import JsonPath.Proofs.LocalReading
import JsonPath.Proofs.OpenLiterals

set_option autoImplicit false

/-!
# Text behind a query

A query is read as far as it goes, with the blanks that its mode allows behind it, and only then is
more text an error. By locality the text up to there is a query of its own, and with any more of the
text behind it the error stays.
-/
namespace JsonPath

namespace Grammar
open Reader

variable {mode : Mode}

/-- A query and the blanks around it, whatever comes next. -/
def leadingQuery (mode : Mode) : QueryReader (List Segment) := do
  lenientBlanks mode
  expect '$'
  let ss ← segments mode (nested mode maxNesting)
  lenientBlanks mode
  pure ss

theorem lenientBlanks_local (mode : Mode) : Local (lenientBlanks mode) := by
  cases mode with
  | strict => exact pure_local ()
  | lenient => exact blanks_local

theorem leadingQuery_local (mode : Mode) : Local (leadingQuery mode) :=
  (lenientBlanks_local mode).bind fun _ => (expect_local '$').bind fun _ =>
    (segments_local (nested_local mode maxNesting)).bind fun _ =>
      (lenientBlanks_local mode).bind fun _ => pure_local _

theorem leadingQuery_eq_ok_iff {text rest : List Char} {ss : List Segment} :
    (leadingQuery mode).run text = .ok (ss, rest) ↔
      ∃ tail between, (lenientBlanks mode).run text = .ok ((), '$' :: tail) ∧
        (segments mode (nested mode maxNesting)).run tail = .ok (ss, between) ∧
        (lenientBlanks mode).run between = .ok ((), rest) := by
  simp only [leadingQuery, run_bind_eq_ok, run_expect_eq_ok, run_pure, Except.ok.injEq,
    Prod.mk.injEq]
  constructor
  · rintro ⟨_, _, hstart, _, tail, rfl, _, between, hss, _, _, hend, rfl, rfl⟩
    exact ⟨tail, between, hstart, hss, hend⟩
  · rintro ⟨tail, between, hstart, hss, hend⟩
    exact ⟨(), _, hstart, (), tail, rfl, ss, between, hss, (), rest, hend, rfl, rfl⟩

theorem query_of_leadingQuery {text rest : List Char} {ss : List Segment}
    (h : (leadingQuery mode).run text = .ok (ss, rest)) :
    (query mode).run text = if rest = [] then .ok (⟨.root, ss⟩, [])
      else .error ⟨rest, .trailingInput (String.ofList rest)⟩ := by
  obtain ⟨tail, between, hstart, hss, hend⟩ := leadingQuery_eq_ok_iff.mp h
  rw [query, run_bind_ok hstart, run_bind_ok (run_accept_self '$' tail), if_pos rfl,
    run_bind_ok hss, run_bind_ok hend, run_bind_ok (run_remaining _)]
  cases rest <;> rfl

end Grammar

open Grammar Reader in
/-- A text with more behind a query is a query up to there, and no further part of it is one. -/
theorem Path.parse_trailingInput {text remainder : String} {mode : Mode} {position : Nat}
    (h : Path.parse text mode = .error ⟨position, .trailingInput remainder⟩) :
    ∃ query : String, text = query ++ remainder ∧ position = query.utf8ByteSize ∧
      (∃ p, Path.parse query mode = .ok p) ∧
      ∀ longer rest : String, text = longer ++ rest → position < longer.utf8ByteSize →
        ∀ p, Path.parse longer mode ≠ .ok p := by
  obtain ⟨query, behind, rfl, rfl, hrun⟩ := Path.parse_eq_error h
  rcases query_error_cases hrun with hwithin | ⟨_, ss, _, _, hstart, hss, hend, -, hfailure⟩
  · exact absurd rfl (hwithin.notTrailing remainder)
  obtain ⟨rfl, hcause⟩ := Failure.mk.inj hfailure
  obtain rfl : remainder = behind := by simpa using hcause
  have hread := leadingQuery_eq_ok_iff.mpr ⟨_, _, hstart, hss, hend⟩
  rw [String.toList_append] at hread
  refine ⟨query, rfl, rfl, ⟨⟨.root, ss⟩, parse_eq_ok_iff.mpr ⟨[], ?_⟩⟩, ?_⟩
  · have hquery := leadingQuery_local mode hread List.nil_prefix
    rw [List.append_nil] at hquery
    exact query_of_leadingQuery hquery
  · intro longer rest htext hlonger p hp
    have hsize (s : String) : byteLength s.toList = s.utf8ByteSize := by
      rw [byteLength_eq, String.ofList_toList]
    have hsplit := congrArg String.toList htext
    rw [String.toList_append, String.toList_append] at hsplit
    obtain ⟨more, hmore⟩ :=
      prefix_of_byteLength_le hsplit (by rw [hsize, hsize]; exact Nat.le_of_lt hlonger)
    have hcut : more <+: remainder.toList := by
      rw [← hmore, List.append_assoc] at hsplit
      exact ⟨rest.toList, (List.append_cancel_left hsplit).symm⟩
    have hne : more ≠ [] := by
      rintro rfl
      rw [List.append_nil] at hmore
      rw [← hsize, ← hsize, hmore] at hlonger
      exact Nat.lt_irrefl _ hlonger
    obtain ⟨_, hquery⟩ := parse_eq_ok_iff.mp hp
    rw [← hmore, query_of_leadingQuery (leadingQuery_local mode hread hcut), if_neg hne] at hquery
    cases hquery

theorem Path.parse_trailingInput_blanks :
    Path.parse " $[?@.a < 2]  é.b" .lenient = .error ⟨14, .trailingInput "é.b"⟩ ∧
      ∃ query : String, " $[?@.a < 2]  é.b" = query ++ "é.b" ∧ 14 = query.utf8ByteSize ∧
        (∃ p, Path.parse query .lenient = .ok p) ∧
        ∀ longer rest : String, " $[?@.a < 2]  é.b" = longer ++ rest → 14 < longer.utf8ByteSize →
          ∀ p, Path.parse longer .lenient ≠ .ok p := by
  have hread : Path.parse " $[?@.a < 2]  é.b" .lenient = .error ⟨14, .trailingInput "é.b"⟩ := by
    with_unfolding_all rfl
  exact ⟨hread, Path.parse_trailingInput hread⟩

end JsonPath
