import JsonPath.IRegexp.Cache

set_option autoImplicit false

/-!
# The cache of patterns cannot be noticed

Whatever calls came before, a call answers what compiling answers. A key that a call adds comes
behind those that are there, and only the first one ever goes, so the keys in a cache are the last
of those that were added: the first one has been there longest.
-/
namespace JsonPath.IRegexp.Cache

abbrev Key := String × Scope

variable {α : Type}

def keys (cache : Cache α) : List Key := cache.entries.map Prod.fst

section
variable (compiler : String → Scope → α)

def call (cache : Cache α) (key : Key) : Cache α := (compile compiler cache key.1 key.2).2

/-- The cache behind calls that began with an empty one. -/
def afterCalls (calls : List Key) : Cache α := calls.foldl (call compiler) empty

/-- The keys that calls add to a cache because it does not hold them, in the order of the calls. -/
def added (cache : Cache α) : List Key → List Key
  | [] => []
  | key :: rest =>
    if key ∈ cache.keys then added (call compiler cache key) rest
    else key :: added (call compiler cache key) rest

/-- What every cache satisfies that calls lead to. -/
structure Sound (cache : Cache α) : Prop where
  bounded : cache.entries.length ≤ cacheCapacity
  distinct : cache.keys.Nodup
  compiled : ∀ entry ∈ cache.entries, entry.2 = compiler entry.1.1 entry.1.2

end

variable {compiler : String → Scope → α} {cache : Cache α} {key : Key}

theorem lookup_eq_none_iff : cache.entries.lookup key = none ↔ key ∉ cache.keys := by
  rw [List.lookup_eq_none_iff, keys, List.mem_map]
  constructor
  · rintro h ⟨entry, hentry, rfl⟩
    simpa using h entry hentry
  · intro h entry hentry
    exact bne_iff_ne.mpr fun hkey => h ⟨entry, hentry, hkey.symm⟩

theorem Sound.compile_hit (sound : Sound compiler cache) (h : key ∈ cache.keys) :
    compile compiler cache key.1 key.2 = (compiler key.1 key.2, cache) := by
  cases hlookup : cache.entries.lookup key with
  | none => exact absurd h (lookup_eq_none_iff.mp hlookup)
  | some compiled =>
    obtain ⟨before, behind, hentries, -⟩ := List.lookup_eq_some_iff.mp hlookup
    have hcompiled := sound.compiled (key, compiled) (by simp [hentries])
    rw [compile, hlookup, ← hcompiled]

theorem compile_miss (compiler : String → Scope → α) (h : key ∉ cache.keys) :
    compile compiler cache key.1 key.2 =
      (compiler key.1 key.2, cache.add key (compiler key.1 key.2)) := by
  rw [compile, lookup_eq_none_iff.mpr h]

theorem entries_trimmed (sound : Sound compiler cache) :
    cache.trimmed.entries =
      if cache.entries.length = cacheCapacity then cache.entries.tail else cache.entries := by
  have hbounded := sound.bounded
  by_cases hfull : cache.entries.length = cacheCapacity
  · rw [if_pos hfull, trimmed, if_pos (by omega), List.drop_one]
  · rw [if_neg hfull, trimmed, if_neg (by omega)]

theorem trimmed_suffix (cache : Cache α) : cache.trimmed.entries <:+ cache.entries := by
  unfold trimmed
  split
  · exact List.drop_suffix 1 cache.entries
  · exact List.suffix_refl _

theorem length_trimmed (sound : Sound compiler cache) :
    cache.trimmed.entries.length < cacheCapacity := by
  have hbounded := sound.bounded
  rw [entries_trimmed sound]
  split
  · next hfull =>
    rw [List.length_tail, hfull]
    decide
  · omega

theorem Sound.add (sound : Sound compiler cache) (h : key ∉ cache.keys) :
    Sound compiler (cache.add key (compiler key.1 key.2)) where
  bounded := by
    have hroom := length_trimmed sound
    simp only [Cache.add, List.length_append, List.length_singleton]
    omega
  distinct := by
    have hsuffix : cache.trimmed.keys <:+ cache.keys := (trimmed_suffix cache).map Prod.fst
    rw [keys, Cache.add, List.map_append]
    refine List.nodup_append.mpr ⟨sound.distinct.sublist hsuffix.sublist, by simp, ?_⟩
    intro old hold new hnew hsame
    rw [hsame, List.mem_singleton.mp hnew] at hold
    exact h (hsuffix.subset hold)
  compiled := by
    intro entry hentry
    rcases List.mem_append.mp hentry with hold | hnew
    · exact sound.compiled entry ((trimmed_suffix cache).subset hold)
    · rw [List.mem_singleton.mp hnew]

theorem Sound.call (sound : Sound compiler cache) (key : Key) :
    Sound compiler (call compiler cache key) := by
  by_cases h : key ∈ cache.keys
  · rwa [Cache.call, sound.compile_hit h]
  · rw [Cache.call, compile_miss compiler h]
    exact sound.add h

/-- A new key goes behind the others, if need be in place of the first. -/
theorem Sound.entries_call (sound : Sound compiler cache) (key : Key) :
    (Cache.call compiler cache key).entries =
      if key ∈ cache.keys then cache.entries
      else (if cache.entries.length = cacheCapacity then cache.entries.tail else cache.entries) ++
        [(key, compiler key.1 key.2)] := by
  by_cases h : key ∈ cache.keys
  · rw [if_pos h, Cache.call, sound.compile_hit h]
  · rw [if_neg h, Cache.call, compile_miss compiler h, ← entries_trimmed sound]
    rfl

theorem sound_empty (compiler : String → Scope → α) : Sound compiler empty where
  bounded := Nat.zero_le _
  distinct := List.nodup_nil
  compiled := nofun

theorem sound_foldl (sound : Sound compiler cache) (calls : List Key) :
    Sound compiler (calls.foldl (call compiler) cache) := by
  induction calls generalizing cache with
  | nil => exact sound
  | cons key rest ih => exact ih (sound.call key)

theorem keys_call_suffix (sound : Sound compiler cache) {log : List Key}
    (h : cache.keys <:+ log) (key : Key) :
    (call compiler cache key).keys <:+ if key ∈ cache.keys then log else log ++ [key] := by
  by_cases hk : key ∈ cache.keys
  · rw [if_pos hk, Cache.call, sound.compile_hit hk]
    exact h
  · rw [if_neg hk, Cache.call, compile_miss compiler hk, keys, Cache.add, List.map_append]
    obtain ⟨earlier, hlog⟩ := ((trimmed_suffix cache).map Prod.fst).trans h
    exact ⟨earlier, by rw [← hlog, List.append_assoc]; rfl⟩

/-- The keys of a cache are the last ones that were added to it. -/
theorem keys_foldl_suffix (sound : Sound compiler cache) {log : List Key}
    (h : cache.keys <:+ log) (calls : List Key) :
    (calls.foldl (call compiler) cache).keys <:+ log ++ added compiler cache calls := by
  induction calls generalizing cache log with
  | nil => rwa [added, List.append_nil]
  | cons key rest ih =>
    have hnext := ih (sound.call key) (keys_call_suffix sound h key)
    rw [added, List.foldl_cons]
    split
    · next hk => rwa [if_pos hk] at hnext
    · next hk => rwa [if_neg hk, List.append_assoc, List.singleton_append] at hnext

/-- After any calls the next one answers what compiling answers. The cache holds at most 256 keys,
each once and with what it compiles to. They are the last keys that were added, in that order, and
when one more comes to a full cache, the first of them is dropped. -/
theorem afterCalls_transparent (compiler : String → Scope → α) (calls : List Key) (key : Key) :
    (compile compiler (afterCalls compiler calls) key.1 key.2).1 = compiler key.1 key.2 ∧
      (afterCalls compiler calls).entries.length ≤ 256 ∧
      (afterCalls compiler calls).keys.Nodup ∧
      (∀ entry ∈ (afterCalls compiler calls).entries, entry.2 = compiler entry.1.1 entry.1.2) ∧
      (afterCalls compiler calls).keys <:+ added compiler empty calls ∧
      (afterCalls compiler (calls ++ [key])).entries =
        if key ∈ (afterCalls compiler calls).keys then (afterCalls compiler calls).entries
        else (if (afterCalls compiler calls).entries.length = 256
            then (afterCalls compiler calls).entries.tail
          else (afterCalls compiler calls).entries) ++ [(key, compiler key.1 key.2)] := by
  have sound : Sound compiler (afterCalls compiler calls) :=
    sound_foldl (sound_empty compiler) calls
  have hanswer : (compile compiler (afterCalls compiler calls) key.1 key.2).1 =
      compiler key.1 key.2 := by
    by_cases h : key ∈ (afterCalls compiler calls).keys
    · rw [sound.compile_hit h]
    · rw [compile_miss compiler h]
  have hnext :
        afterCalls compiler (calls ++ [key]) = call compiler (afterCalls compiler calls) key := by
    rw [afterCalls, List.foldl_append]
    rfl
  refine ⟨hanswer, sound.bounded, sound.distinct, sound.compiled, ?_, ?_⟩
  · exact keys_foldl_suffix (sound_empty compiler) (List.suffix_refl []) calls
  · rw [hnext]
    exact sound.entries_call key

end JsonPath.IRegexp.Cache
