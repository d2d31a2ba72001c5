import JsonPath.Proofs.Simulations

set_option autoImplicit false

/-!
# Groups around a text

A text is read in a group as it is read alone, and the groups around it stay as they are, up to a
parenthesis that closes a group which the text has not opened. Alone, that parenthesis is an error.
-/
namespace JsonPath.Pattern
open Reader

/-- The state of reading when other groups stand around all that are open. -/
def GroupState.within (st : GroupState) (frames : List (Branches × Flags)) : GroupState :=
  { st with outer := st.outer ++ frames }

theorem repeatLast_simulates {R : GroupState → GroupState → Prop} {st st' : GroupState}
    (hsame : st'.branches = st.branches)
    (h : ∀ branches, R { st with branches := branches } { st' with branches := branches })
    (least : Nat) (most : Option Nat) :
    Simulates R (st.repeatLast least most) (st'.repeatLast least most) := by
  unfold GroupState.repeatLast
  rw [hsame]
  split
  · exact .ite (.pure (h _)) (.invalid _)
  · exact .invalid _

section
variable (frames : List (Branches × Flags))

theorem within_simulation : Simulation fun st st' => st' = st.within frames where
  flags := by rintro st _ rfl; rfl
  names := by rintro st _ rfl; rfl
  add := by rintro st _ rfl e; rfl
  enter := by rintro st _ rfl flags; rfl
  setFlags := by rintro st _ rfl flags; rfl
  setNames := by rintro st _ rfl names; rfl
  nextAlternative := by rintro st _ rfl; rfl
  repeatLast := by
    rintro st _ rfl least most
    exact repeatLast_simulates (by rfl) (fun _ => by rfl) _ _

theorem of_within_simulation : Simulation fun st st' => st = st'.within frames where
  flags := by rintro _ st rfl; rfl
  names := by rintro _ st rfl; rfl
  add := by rintro _ st rfl e; rfl
  enter := by rintro _ st rfl flags; rfl
  setFlags := by rintro _ st rfl flags; rfl
  setNames := by rintro _ st rfl names; rfl
  nextAlternative := by rintro _ st rfl; rfl
  repeatLast := by
    rintro _ st rfl least most
    exact repeatLast_simulates (by rfl) (fun _ => by rfl) _ _

end

theorem groupStep_unopened {st : GroupState} (h : st.outer = []) (rest : List Char) :
    (groupStep st).run (')' :: rest) = .error () := by
  have hleave : st.leave = invalid := by rw [GroupState.leave, h]
  have hread : (readElement st).run (')' :: rest) = st.leave.run rest := rfl
  exact run_bind_error (by rw [hread, hleave]; rfl)

theorem elements_unopened {st : GroupState} (h : st.outer = []) (rest : List Char) :
    (elements st).run (')' :: rest) = .error () :=
  loopRun_error rfl (groupStep_unopened h rest)

theorem Reads.within {st st' : GroupState} {input rest : List Char}
    (h : Reads (st, input) (st', rest)) (frames : List (Branches × Flags)) :
    Reads (st.within frames, input) (st'.within frames, rest) := by
  obtain ⟨_, hstep, rfl⟩ := h.simulated (within_simulation frames) rfl fun hclose => by
    -- what is closed has been opened
    obtain ⟨tail, rfl⟩ := List.head?_eq_some_iff.mp hclose
    rcases houter : st.outer with _ | ⟨frame, outer⟩
    · cases (groupStep_unopened houter tail).symm.trans h.2
    · simp only [GroupState.leave, GroupState.within, houter, List.cons_append]
      exact .pure rfl
  exact hstep

theorem Reads.of_within {st next : GroupState} {input rest : List Char}
    {frames : List (Branches × Flags)} (h : Reads (st.within frames, input) (next, rest))
    (hclose : input.head? = some ')' → st.outer ≠ []) :
    ∃ st', next = st'.within frames ∧ Reads (st, input) (st', rest) := by
  obtain ⟨st', hstep, hnext⟩ := h.simulated (of_within_simulation frames) rfl fun hhead => by
    obtain ⟨frame, outer, houter⟩ := List.exists_cons_of_ne_nil (hclose hhead)
    simp only [GroupState.leave, GroupState.within, houter, List.cons_append]
    exact .pure rfl
  exact ⟨st', hnext, hstep⟩

theorem reads_within {now next : GroupState × List Char}
    (h : Relation.ReflTransGen Reads now next) (frames : List (Branches × Flags)) :
    Relation.ReflTransGen Reads (now.1.within frames, now.2) (next.1.within frames, next.2) :=
  h.lift (fun now => (now.1.within frames, now.2)) fun _ _ hstep => Reads.within hstep frames

/-- A text that ends the groups around it comes to a parenthesis that closes none of its own. -/
theorem exists_closing {st last : GroupState} {text : List Char} {frames : List (Branches × Flags)}
    (hframes : frames ≠ []) (houter : last.outer = [])
    (h : Relation.ReflTransGen Reads (st.within frames, text) (last, [])) :
    ∃ st' rest, Relation.ReflTransGen Reads (st, text) (st', ')' :: rest) ∧ st'.outer = [] := by
  generalize hnow : (st.within frames, text) = now at h
  induction h using Relation.ReflTransGen.head_induction_on generalizing st text with
  | refl =>
    cases hnow
    exact absurd houter (List.append_ne_nil_of_right_ne_nil _ hframes)
  | @head now next hstep _ ih =>
    subst hnow
    by_cases hclose : text.head? = some ')' ∧ st.outer = []
    · obtain ⟨rest, rfl⟩ := List.head?_eq_some_iff.mp hclose.1
      exact ⟨st, rest, .refl, hclose.2⟩
    · obtain ⟨st₁, hnext, hstep₁⟩ := hstep.of_within fun hhead hnil => hclose ⟨hhead, hnil⟩
      obtain ⟨st', rest, hreads, hst'⟩ := @ih st₁ next.2 (by rw [← hnext])
      exact ⟨st', rest, .head hstep₁ hreads, hst'⟩

end JsonPath.Pattern
