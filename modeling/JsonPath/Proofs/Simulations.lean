import JsonPath.Proofs.PatternReading

set_option autoImplicit false

/-!
# Readers of patterns in related states

A reader of patterns does few things to its state: it adds an element or repeats the last one, goes
on to the next alternative, enters a group, or sets flags or names. If a relation between states
outlasts all of these, then every reader that succeeds in one of two related states succeeds in the
other one, with the same text behind it, and the states are related again. Only closing a group
depends on the groups around it and is left to the relation.
-/
namespace JsonPath.Pattern
open Reader

variable {α : Type} {R : GroupState → GroupState → Prop}

/-- Where the first reader succeeds the second one does, on the same text and in a related state. -/
def Simulates (R : GroupState → GroupState → Prop) (p p' : PatternReader GroupState) : Prop :=
  ∀ ⦃input rest : List Char⦄ ⦃st : GroupState⦄, p.run input = .ok (st, rest) →
    ∃ st', p'.run input = .ok (st', rest) ∧ R st st'

theorem Simulates.pure {st st' : GroupState} (h : R st st') :
    Simulates R (pure st) (pure st') := by
  intro input rest next hok
  cases hok
  exact ⟨st', rfl, h⟩

theorem Simulates.invalid (p : PatternReader GroupState) : Simulates R invalid p := nofun

theorem Simulates.bind {q : PatternReader α} {f f' : α → PatternReader GroupState}
    (h : ∀ a, Simulates R (f a) (f' a)) : Simulates R (q >>= f) (q >>= f') := by
  intro input rest next hok
  obtain ⟨a, between, ha, hnext⟩ := run_bind_eq_ok.mp hok
  obtain ⟨next', hnext', hrelated⟩ := h a hnext
  exact ⟨next', (run_bind_ok ha).trans hnext', hrelated⟩

theorem Simulates.map {q : PatternReader α} {f f' : α → GroupState} (h : ∀ a, R (f a) (f' a)) :
    Simulates R (f <$> q) (f' <$> q) :=
  .bind fun a => .pure (h a)

theorem Simulates.ite {c : Prop} [Decidable c] {p p' q q' : PatternReader GroupState}
    (hp : Simulates R p p') (hq : Simulates R q q') :
    Simulates R (if c then p else q) (if c then p' else q') := by
  split
  · exact hp
  · exact hq

/-- What a reader does to one of two related states it does to the other. -/
structure Simulation (R : GroupState → GroupState → Prop) : Prop where
  flags : ∀ ⦃st st'⦄, R st st' → st'.flags = st.flags
  names : ∀ ⦃st st'⦄, R st st' → st'.names = st.names
  add : ∀ ⦃st st'⦄, R st st' → ∀ e, R (st.add e) (st'.add e)
  enter : ∀ ⦃st st'⦄, R st st' → ∀ flags, R (st.enter flags) (st'.enter flags)
  setFlags : ∀ ⦃st st'⦄, R st st' →
    ∀ flags, R { st with flags := flags } { st' with flags := flags }
  setNames : ∀ ⦃st st'⦄, R st st' →
    ∀ names, R { st with names := names } { st' with names := names }
  nextAlternative : ∀ ⦃st st'⦄, R st st' →
    R { st with branches := st.branches.nextAlternative }
      { st' with branches := st'.branches.nextAlternative }
  repeatLast : ∀ ⦃st st'⦄, R st st' → ∀ least most,
    Simulates R (st.repeatLast least most) (st'.repeatLast least most)

section
variable (sim : Simulation R) {st st' : GroupState} (h : R st st')
include sim h

theorem namedGroup_simulates : Simulates R (namedGroup st) (namedGroup st') := by
  unfold namedGroup
  rw [sim.names h, sim.flags h]
  exact .bind fun name => .bind fun _ =>
    .ite (.pure (sim.setNames (sim.enter h _) _)) (.invalid _)

theorem setFlags_simulates (items : List Char) (stop : Char) :
    Simulates R (setFlags st items stop) (setFlags st' items stop) := by
  unfold setFlags
  rw [sim.flags h]
  exact .ite (.invalid _) (.ite (.pure (sim.enter h _))
    (.ite (.invalid _) (.pure (sim.setFlags (sim.add h _) _))))

theorem flagGroup_simulates : Simulates R (flagGroup st) (flagGroup st') := by
  rw [flagGroup_eq, flagGroup_eq]
  exact .bind fun items => .bind fun stop => setFlags_simulates sim h items stop

theorem groupBy_simulates (first second third : Option Char) :
    Simulates R (groupBy st first second third) (groupBy st' first second third) := by
  have hnamed (n : Nat) :
      Simulates R (skip n >>= fun _ => namedGroup st) (skip n >>= fun _ => namedGroup st') :=
    .bind fun _ => namedGroup_simulates sim h
  unfold groupBy
  rw [sim.flags h]
  refine .ite (.ite (.invalid _) (.ite (.ite (.invalid _) (hnamed 2)) (.ite (hnamed 3) ?_))) ?_
  · exact .bind fun _ => flagGroup_simulates sim h
  · exact .pure (sim.enter h _)

theorem openGroup_simulates : Simulates R (openGroup st) (openGroup st') := by
  rw [openGroup_eq, openGroup_eq, sim.flags h]
  exact .bind fun _ => .bind fun input => groupBy_simulates sim h _ _ _

theorem uncounted_simulates (least : Nat) (most : Option Nat) :
    Simulates R (uncounted st least most) (uncounted st' least most) :=
  .bind fun _ => sim.repeatLast h least most

theorem closeCount_simulates (bounds : Option Nat × Option Nat) :
    Simulates R (closeCount st bounds) (closeCount st' bounds) := by
  unfold closeCount
  rw [sim.flags h]
  refine .bind fun _ => .bind fun _ => .bind fun _ => ?_
  split
  · exact sim.repeatLast h _ _
  · exact .invalid _

theorem closeBetween_simulates (least most : Option Nat) :
    Simulates R (closeBetween st least most) (closeBetween st' least most) := by
  unfold closeBetween
  split
  · exact .ite (closeCount_simulates sim h _) (.invalid _)
  · exact .invalid _

theorem upperBound_simulates (least : Option Nat) :
    Simulates R (upperBound st least) (upperBound st' least) := by
  unfold upperBound
  rw [sim.flags h]
  exact .bind fun _ => .bind fun next => .ite (closeCount_simulates sim h _)
    (.bind fun most => closeBetween_simulates sim h least most)

theorem counted_simulates : Simulates R (counted st) (counted st') := by
  rw [counted_eq, counted_eq, sim.flags h]
  exact .bind fun _ => .bind fun least => .bind fun comma =>
    .ite (upperBound_simulates sim h least) (closeCount_simulates sim h _)

theorem addLiteral_related (c : Char) : R (st.addLiteral c) (st'.addLiteral c) := by
  unfold GroupState.addLiteral
  rw [sim.flags h]
  exact sim.add h _

theorem addEscaped_simulates : Simulates R (addEscaped st) (addEscaped st') := by
  unfold addEscaped
  rw [sim.flags h]
  refine .bind fun item => ?_
  split
  · exact .pure (addLiteral_related sim h _)
  · exact .pure (sim.add h _)
  · exact .pure (sim.add h _)

theorem element_simulates {c : Char} (hleave : c = ')' → Simulates R st.leave st'.leave) :
    Simulates R (element st c) (element st' c) := by
  unfold element
  split
  case h_1 => exact openGroup_simulates sim h
  case h_2 => exact hleave rfl
  case h_3 => exact .pure (sim.nextAlternative h)
  case h_4 | h_5 | h_6 => exact uncounted_simulates sim h _ _
  case h_7 => exact counted_simulates sim h
  case h_8 => exact addEscaped_simulates sim h
  case h_9 =>
    rw [sim.flags h]
    exact .map fun s => sim.add h _
  case h_10 | h_11 =>
    rw [sim.flags h]
    exact .pure (sim.add h _)
  case h_12 => exact .pure (addLiteral_related sim h _)

theorem Reads.simulated {next : GroupState} {input rest : List Char}
    (hreads : Reads (st, input) (next, rest))
    (hleave : input.head? = some ')' → Simulates R st.leave st'.leave) :
    ∃ next', Reads (st', input) (next', rest) ∧ R next next' := by
  obtain ⟨hne, hstep⟩ := hreads
  obtain ⟨st₁, between, hread, hgap⟩ := run_bind_eq_ok.mp hstep
  obtain ⟨st₁', hread', h₁⟩ : ∃ st₁', (readElement st').run input = .ok (st₁', between) ∧
      R st₁ st₁' := by
    unfold readElement at hread ⊢
    rw [run_bind_ok (run_peek _)] at hread ⊢
    split at hread
    · next hbracket =>
      rw [if_pos hbracket, sim.flags h]
      exact Simulates.map (fun t => sim.add h _) hread
    · next hbracket =>
      rw [if_neg hbracket]
      obtain ⟨c, tail, hc, hread⟩ := run_bind_eq_ok.mp hread
      obtain rfl := run_nextChar_eq_ok.mp hc
      obtain ⟨st₁', hread', h₁⟩ :=
        element_simulates sim h (fun hclose => hleave (congrArg some hclose)) hread
      exact ⟨st₁', (run_bind_ok hc).trans hread', h₁⟩
  rw [run_bind_ok (run_gaps _ _)] at hgap
  cases hgap
  refine ⟨st₁', ⟨hne, (run_bind_ok hread').trans ?_⟩, h₁⟩
  rw [sim.flags h₁, run_bind_ok (run_gaps _ _)]
  rfl

end

end JsonPath.Pattern
