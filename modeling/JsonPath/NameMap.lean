set_option autoImplicit false

/-!
# Ordered maps from names

Bindings keep the order in which their names first came in. Binding a name again replaces its value
and keeps its place.
-/
namespace JsonPath
namespace NameMap

/-- Replaces the binding of a name, or adds one at the end. -/
def put {α : Type} (name : String) (value : α) : List (String × α) → List (String × α)
  | [] => [(name, value)]
  | (n, v) :: rest => if n = name then (name, value) :: rest else (n, v) :: put name value rest

theorem map_fst_put {α : Type} (name : String) (value : α) (entries : List (String × α)) :
    (put name value entries).map Prod.fst =
      if name ∈ entries.map Prod.fst then entries.map Prod.fst
      else entries.map Prod.fst ++ [name] := by
  induction entries with
  | nil => simp [put]
  | cons entry rest ih =>
    obtain ⟨n, v⟩ := entry
    by_cases h : n = name
    · simp [put, h]
    · have h' : ¬ name = n := fun e => h e.symm
      by_cases hm : name ∈ rest.map Prod.fst
      · rw [if_pos hm] at ih
        simp [put, h, ih, List.mem_cons, hm]
      · rw [if_neg hm] at ih
        simp [put, h, h', ih, List.mem_cons, hm]

theorem nodup_put {α : Type} (name : String) (value : α) {entries : List (String × α)}
    (h : (entries.map Prod.fst).Nodup) : ((put name value entries).map Prod.fst).Nodup := by
  rw [map_fst_put]
  by_cases hm : name ∈ entries.map Prod.fst
  · rwa [if_pos hm]
  · rw [if_neg hm]
    refine List.nodup_append.mpr ⟨h, by simp, ?_⟩
    intro a ha b hb
    rw [List.mem_singleton] at hb
    rintro rfl
    exact hm (hb ▸ ha)

theorem lookup_cons_eq_ite {α : Type} (name : String) (value : α) (entries : List (String × α))
    (n : String) :
    ((name, value) :: entries).lookup n = if n = name then some value else entries.lookup n := by
  rw [List.lookup_cons]
  by_cases h : n = name
  · simp [h]
  · rw [beq_eq_false_iff_ne.mpr h, if_neg h]

theorem lookup_eq_none_of_not_mem {α : Type} {name : String} {entries : List (String × α)}
    (h : name ∉ entries.map Prod.fst) : entries.lookup name = none := by
  refine List.lookup_eq_none_iff.mpr fun entry hentry => ?_
  have hne : name ≠ entry.1 := by
    rintro rfl
    exact h (List.mem_map.mpr ⟨entry, hentry, rfl⟩)
  simpa using hne

theorem lookup_put {α : Type} (name : String) (value : α) (entries : List (String × α))
    (n : String) :
    (put name value entries).lookup n = if n = name then some value else entries.lookup n := by
  induction entries with
  | nil => exact lookup_cons_eq_ite name value [] n
  | cons entry rest ih =>
    obtain ⟨m, v⟩ := entry
    by_cases hm : m = name
    · rw [put, if_pos hm, lookup_cons_eq_ite, lookup_cons_eq_ite, hm]
      split <;> rfl
    · rw [put, if_neg hm, lookup_cons_eq_ite, lookup_cons_eq_ite, ih]
      by_cases hn : n = m
      · have hname : ¬ n = name := fun h => hm (hn ▸ h)
        rw [if_pos hn, if_neg hname, if_pos hn]
      · rw [if_neg hn, if_neg hn]

end NameMap

structure NameMap (α : Type) where
  entries : List (String × α)
  nodup : (entries.map Prod.fst).Nodup

namespace NameMap

variable {α : Type}

def empty : NameMap α := ⟨[], List.nodup_nil⟩

def names (m : NameMap α) : List String := m.entries.map Prod.fst

def get? (m : NameMap α) (name : String) : Option α := m.entries.lookup name

def insert (m : NameMap α) (name : String) (value : α) : NameMap α :=
  ⟨put name value m.entries, nodup_put name value m.nodup⟩

theorem get?_insert (m : NameMap α) (name : String) (value : α) (n : String) :
    (m.insert name value).get? n = if n = name then some value else m.get? n :=
  lookup_put name value m.entries n

def extend (m other : NameMap α) : NameMap α :=
  other.entries.foldl (fun m entry => m.insert entry.1 entry.2) m

theorem get?_foldl_insert {entries : List (String × α)} (nodup : (entries.map Prod.fst).Nodup)
    (m : NameMap α) (name : String) :
    (entries.foldl (fun m entry => m.insert entry.1 entry.2) m).get? name =
      (entries.lookup name).or (m.get? name) := by
  induction entries generalizing m with
  | nil => rfl
  | cons entry rest ih =>
    obtain ⟨n, v⟩ := entry
    rw [List.map_cons, List.nodup_cons] at nodup
    rw [List.foldl_cons, ih nodup.2, get?_insert, lookup_cons_eq_ite]
    by_cases h : name = n
    · subst h
      -- no later binding replaces this one
      simp [lookup_eq_none_of_not_mem nodup.1]
    · simp [h]

theorem get?_extend (m other : NameMap α) (name : String) :
    (m.extend other).get? name = (other.get? name).or (m.get? name) :=
  get?_foldl_insert other.nodup m name

end NameMap
end JsonPath
