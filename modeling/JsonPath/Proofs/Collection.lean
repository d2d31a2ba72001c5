import JsonPath.Evaluation

set_option autoImplicit false

/-!
# Collected results

Results are collected item by item, and the first error ends the collection. A list of items may
therefore be cut into pieces that are collected one after the other.
-/
namespace JsonPath

theorem bind_eq_ok {α β : Type} {x : Except EvalError α} {f : α → Except EvalError β} {b : β} :
    x >>= f = .ok b ↔ ∃ a, x = .ok a ∧ f a = .ok b := by
  cases x with
  | error e =>
    constructor
    · intro h
      cases h
    · rintro ⟨a, h, -⟩
      cases h
  | ok a =>
    constructor
    · exact fun h => ⟨a, rfl, h⟩
    · rintro ⟨_, ⟨⟩, h⟩
      exact h

theorem bind_eq_error {α β : Type} {x : Except EvalError α} {f : α → Except EvalError β}
    {e : EvalError} : x >>= f = .error e ↔ x = .error e ∨ ∃ a, x = .ok a ∧ f a = .error e := by
  cases x with
  | error e' =>
    constructor
    · intro h
      cases h
      exact .inl rfl
    · rintro (⟨⟨⟩⟩ | ⟨a, h, -⟩)
      · rfl
      · cases h
  | ok a =>
    constructor
    · exact fun h => .inr ⟨a, rfl, h⟩
    · rintro (h | ⟨_, ⟨⟩, h⟩)
      · cases h
      · exact h

variable {α β γ : Type}

theorem collect_cons (f : α → Except EvalError (List γ)) (a : α) (as : List α) :
    collect f (a :: as) =
      f a >>= fun found => collect f as >>= fun more => pure (found ++ more) := by
  rw [collect]
  cases f a with
  | error e => rfl
  | ok found => cases collect f as <;> rfl

theorem collect_append (f : α → Except EvalError (List γ)) (as bs : List α) :
    collect f (as ++ bs) =
      collect f as >>= fun found => collect f bs >>= fun more => pure (found ++ more) := by
  induction as with
  | nil => exact (bind_pure (collect f bs)).symm
  | cons a rest ih =>
    rw [List.cons_append, collect_cons, collect_cons, ih]
    simp only [bind_assoc, pure_bind, List.append_assoc]

theorem collect_singleton (f : α → Except EvalError (List γ)) (a : α) : collect f [a] = f a := by
  rw [collect_cons]
  cases f a with
  | error e => rfl
  | ok found => exact congrArg Except.ok (List.append_nil found)

theorem collect_flatMap (f : β → Except EvalError (List γ)) (g : α → List β) (as : List α) :
    collect f (as.flatMap g) = collect (fun a => collect f (g a)) as := by
  induction as with
  | nil => rfl
  | cons a rest ih => rw [List.flatMap_cons, collect_append, ih, collect_cons]

theorem collect_map (f : β → Except EvalError (List γ)) (g : α → β) (as : List α) :
    collect f (as.map g) = collect (fun a => f (g a)) as := by
  induction as with
  | nil => rfl
  | cons a rest ih => rw [List.map_cons, collect_cons, collect_cons, ih]

theorem collect_map_results (f : α → Except EvalError (List β)) (g : β → γ) (as : List α) :
    collect (fun a => List.map g <$> f a) as = List.map g <$> collect f as := by
  induction as with
  | nil => rfl
  | cons a rest ih =>
    rw [collect_cons, collect_cons, ih]
    simp only [map_eq_pure_bind, bind_assoc, pure_bind, List.map_append]

theorem collect_ok (f : α → List γ) (as : List α) :
    collect (fun a => .ok (f a)) as = .ok (as.flatMap f) := by
  induction as with
  | nil => rfl
  | cons a rest ih =>
    rw [collect_cons, ih]
    rfl

theorem collect_cons_eq_ok {f : α → Except EvalError (List β)} {a : α} {as : List α}
    {bs : List β} : collect f (a :: as) = .ok bs ↔
      ∃ found more, f a = .ok found ∧ collect f as = .ok more ∧ bs = found ++ more := by
  rw [collect_cons, bind_eq_ok]
  constructor
  · rintro ⟨found, hfound, h⟩
    obtain ⟨more, hmore, h⟩ := bind_eq_ok.mp h
    cases h
    exact ⟨found, more, hfound, hmore, rfl⟩
  · rintro ⟨found, more, hfound, hmore, rfl⟩
    exact ⟨found, hfound, bind_eq_ok.mpr ⟨more, hmore, rfl⟩⟩

theorem mem_collect {f : α → Except EvalError (List β)} {as : List α} {bs : List β}
    (h : collect f as = .ok bs) {b : β} (hb : b ∈ bs) :
    ∃ a ∈ as, ∃ cs, f a = .ok cs ∧ b ∈ cs := by
  induction as generalizing bs with
  | nil =>
    cases h
    cases hb
  | cons a rest ih =>
    obtain ⟨found, more, hfound, hmore, rfl⟩ := collect_cons_eq_ok.mp h
    rcases List.mem_append.mp hb with hb | hb
    · exact ⟨a, List.mem_cons_self, found, hfound, hb⟩
    · obtain ⟨a', ha', cs, hcs, hb⟩ := ih hmore hb
      exact ⟨a', List.mem_cons_of_mem a ha', cs, hcs, hb⟩

theorem collect_sublist {f : α → Except EvalError (List α)} {as bs : List α}
    (h : collect f as = .ok bs) (hf : ∀ a found, f a = .ok found → found.Sublist [a]) :
    bs.Sublist as := by
  induction as generalizing bs with
  | nil =>
    cases h
    exact List.Sublist.refl _
  | cons a rest ih =>
    obtain ⟨found, more, hfound, hmore, rfl⟩ := collect_cons_eq_ok.mp h
    exact (hf a found hfound).append (ih hmore)

theorem collect_pairwise {f : α → Except EvalError (List β)} {R : α → α → Prop}
    {S : β → β → Prop} {as : List α} {bs : List β} (h : collect f as = .ok bs)
    (has : as.Pairwise R) (hown : ∀ a ∈ as, ∀ cs, f a = .ok cs → cs.Pairwise S)
    (hacross : ∀ a b, R a b → ∀ cs ds, f a = .ok cs → f b = .ok ds → ∀ c ∈ cs, ∀ d ∈ ds, S c d) :
    bs.Pairwise S := by
  induction as generalizing bs with
  | nil =>
    cases h
    exact .nil
  | cons a rest ih =>
    obtain ⟨found, more, hfound, hmore, rfl⟩ := collect_cons_eq_ok.mp h
    rw [List.pairwise_cons] at has
    rw [List.forall_mem_cons] at hown
    refine List.pairwise_append.mpr ⟨hown.1 found hfound, ih hmore has.2 hown.2, ?_⟩
    intro c hc d hd
    obtain ⟨b, hb, ds, hds, hd⟩ := mem_collect hmore hd
    exact hacross a b (has.1 b hb) found ds hfound hds c hc d hd

theorem collect_eq_error {f : α → Except EvalError (List γ)} {before after : List α} {a : α}
    {e : EvalError} (hbefore : ∀ b ∈ before, ∃ found, f b = .ok found) (ha : f a = .error e) :
    collect f (before ++ a :: after) = .error e := by
  induction before with
  | nil =>
    rw [List.nil_append, collect_cons, ha]
    rfl
  | cons b before ih =>
    obtain ⟨⟨found, hfound⟩, hrest⟩ := List.forall_mem_cons.mp hbefore
    rw [List.cons_append, collect_cons, hfound, ih hrest]
    rfl

theorem exists_first_error {f : α → Except EvalError (List γ)} {as : List α} {e : EvalError}
    (h : collect f as = .error e) :
    ∃ before a after, as = before ++ a :: after ∧
      (∀ b ∈ before, ∃ found, f b = .ok found) ∧ f a = .error e := by
  induction as with
  | nil => cases h
  | cons a rest ih =>
    rw [collect_cons] at h
    obtain hfirst | ⟨found, hfirst, hmore⟩ := bind_eq_error.mp h
    · exact ⟨[], a, rest, rfl, by simp, hfirst⟩
    obtain hrest | ⟨more, -, hnone⟩ := bind_eq_error.mp hmore
    · obtain ⟨before, b, after, rfl, hbefore, hb⟩ := ih hrest
      exact ⟨a :: before, b, after, rfl, List.forall_mem_cons.mpr ⟨⟨found, hfirst⟩, hbefore⟩, hb⟩
    · cases hnone

/-- The error of a collection is that of the first item that has one. -/
theorem collect_eq_error_iff {f : α → Except EvalError (List γ)} {as : List α} {e : EvalError} :
    collect f as = .error e ↔
      ∃ before a after, as = before ++ a :: after ∧
        (∀ b ∈ before, ∃ found, f b = .ok found) ∧ f a = .error e := by
  constructor
  · exact exists_first_error
  · rintro ⟨before, a, after, rfl, hbefore, ha⟩
    exact collect_eq_error hbefore ha

end JsonPath
