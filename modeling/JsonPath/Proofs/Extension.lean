import JsonPath.Environment

set_option autoImplicit false

/-!
# Environments composed

An ordered map is determined by its names, in their order, and by what it answers for each. Under
extension both follow simple rules: the names of the extension that are new come behind those that
were there, and its bindings win. So extension is associative, and the empty environment is neutral,
the order of the names included.
-/
namespace JsonPath

namespace NameMap

variable {α : Type}

theorem entries_eq {entries entries' : List (String × α)}
    (nodup : (entries.map Prod.fst).Nodup)
    (hnames : entries.map Prod.fst = entries'.map Prod.fst)
    (hget : ∀ name, entries.lookup name = entries'.lookup name) : entries = entries' := by
  induction entries generalizing entries' with
  | nil => simpa using hnames.symm
  | cons entry rest ih =>
    obtain ⟨n, v⟩ := entry
    cases entries' with
    | nil => cases hnames
    | cons entry' rest' =>
      obtain ⟨n', v'⟩ := entry'
      obtain ⟨rfl, hrest⟩ : n = n' ∧ rest.map Prod.fst = rest'.map Prod.fst := by
        simpa using hnames
      obtain rfl : v = v' := by simpa using hget n
      rw [List.map_cons, List.nodup_cons] at nodup
      have hget' (name : String) : rest.lookup name = rest'.lookup name := by
        by_cases hname : name = n
        · -- of the first name neither rest knows anything
          subst hname
          rw [lookup_eq_none_of_not_mem nodup.1, lookup_eq_none_of_not_mem (hrest ▸ nodup.1)]
        · have h := hget name
          rwa [lookup_cons_eq_ite, lookup_cons_eq_ite, if_neg hname, if_neg hname] at h
      rw [ih nodup.2 hrest hget']

theorem eq_of_names_of_get? {m m' : NameMap α} (hnames : m.names = m'.names)
    (hget : ∀ name, m.get? name = m'.get? name) : m = m' := by
  cases m with
  | mk entries nodup =>
    cases m' with
    | mk entries' nodup' =>
      obtain rfl : entries = entries' := entries_eq nodup hnames hget
      rfl

theorem names_insert (m : NameMap α) (name : String) (value : α) :
    (m.insert name value).names = if name ∈ m.names then m.names else m.names ++ [name] :=
  map_fst_put name value m.entries

theorem names_foldl_insert {entries : List (String × α)} (nodup : (entries.map Prod.fst).Nodup)
    (m : NameMap α) :
    (entries.foldl (fun m entry => m.insert entry.1 entry.2) m).names =
      m.names ++ (entries.map Prod.fst).filter (· ∉ m.names) := by
  induction entries generalizing m with
  | nil => exact (List.append_nil m.names).symm
  | cons entry rest ih =>
    obtain ⟨n, v⟩ := entry
    rw [List.map_cons, List.nodup_cons] at nodup
    rw [List.foldl_cons, ih nodup.2, names_insert, List.map_cons]
    by_cases hn : n ∈ m.names
    · rw [if_pos hn, List.filter_cons_of_neg (by simpa using hn)]
    · rw [if_neg hn, List.filter_cons_of_pos (by simpa using hn), List.append_assoc,
        List.singleton_append]
      -- the name that is new now does not come again
      have hlater : ∀ name ∈ rest.map Prod.fst,
          decide (name ∉ m.names ++ [n]) = decide (name ∉ m.names) := by
        intro name hname
        have hne : name ≠ n := by
          rintro rfl
          exact nodup.1 hname
        simp [hne]
      rw [List.filter_congr hlater]

/-- The names that are new come behind the others, in the order of the extension. -/
theorem names_extend (m other : NameMap α) :
    (m.extend other).names = m.names ++ other.names.filter (· ∉ m.names) :=
  names_foldl_insert other.nodup m

theorem extend_assoc (m₁ m₂ m₃ : NameMap α) :
    (m₁.extend m₂).extend m₃ = m₁.extend (m₂.extend m₃) := by
  refine eq_of_names_of_get? ?_ fun name => ?_
  · simp only [names_extend, List.filter_append, List.filter_filter, List.append_assoc,
      List.mem_append, List.mem_filter]
    congr 2
    refine List.filter_congr fun name _ => ?_
    by_cases h₁ : name ∈ m₁.names <;> by_cases h₂ : name ∈ m₂.names <;> simp [h₁, h₂]
  · simp only [get?_extend, Option.or_assoc]

theorem extend_empty (m : NameMap α) : m.extend empty = m := rfl

theorem empty_extend (m : NameMap α) : empty.extend m = m := by
  refine eq_of_names_of_get? ?_ fun name => ?_
  · rw [names_extend]
    simp [names, empty]
  · rw [get?_extend]
    exact Option.or_none

end NameMap

namespace Environment

/-- Composition of environments is an ordered monoid in which the bindings on the right win. -/
theorem extend_monoid (A B C : Environment) :
    (A.vars.names.Nodup ∧ A.functions.names.Nodup) ∧
      (A.extend B).extend C = A.extend (B.extend C) ∧
      A.extend empty = A ∧ empty.extend A = A ∧
      (∀ name, (A.extend B).findVariable name = (B.findVariable name).or (A.findVariable name) ∧
        (A.extend B).findFunction name = (B.findFunction name).or (A.findFunction name)) ∧
      (A.extend B).vars.names = A.vars.names ++ B.vars.names.filter (· ∉ A.vars.names) ∧
      (A.extend B).functions.names =
        A.functions.names ++ B.functions.names.filter (· ∉ A.functions.names) := by
  refine ⟨⟨A.vars.nodup, A.functions.nodup⟩, ?_, ?_, ?_, fun name => ⟨?_, ?_⟩, ?_, ?_⟩
  · simp only [extend, NameMap.extend_assoc]
  · simp only [extend, empty, NameMap.extend_empty]
  · simp only [extend, empty, NameMap.empty_extend]
  · exact findVariable_extend A B name
  · exact findFunction_extend A B name
  · exact NameMap.names_extend A.vars B.vars
  · exact NameMap.names_extend A.functions B.functions

end Environment
end JsonPath
