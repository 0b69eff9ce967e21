/-!
# Named values in order

A list of named values that keeps the order in which the names were first given.
Giving a name another value replaces the old one in its place, so the position of
a name never changes. Dispatch tables, class registries and tables under
construction are such lists.
-/

namespace Lowering.Keyed

variable {α : Type}

/-- Gives a name a value, in the name's place or at the end. -/
def put (name : String) (value : α) : List (String × α) → List (String × α)
  | [] => [(name, value)]
  | (other, current) :: rest =>
    if other = name then (name, value) :: rest else (other, current) :: put name value rest

/-- The names in order. -/
def names (entries : List (String × α)) : List String :=
  entries.map (·.1)

/-- A value is found under a name after `put` exactly as before, except under the
name that was given. -/
theorem lookup_put (name other : String) (value : α) (entries : List (String × α)) :
    (put name value entries).lookup other =
      if other = name then some value else entries.lookup other := by
  induction entries with
  | nil =>
    by_cases hsame : other = name
    · simp [put, hsame]
    · have hdiffers : (other == name) = false := by simpa using hsame
      simp [put, List.lookup_cons, hsame, hdiffers]
  | cons entry rest ih =>
    obtain ⟨first, current⟩ := entry
    by_cases hthis : first = name
    · subst hthis
      by_cases hsame : other = first
      · simp [put, hsame]
      · have hdiffers : (other == first) = false := by simpa using hsame
        simp [put, List.lookup_cons, hsame, hdiffers]
    · by_cases hfound : other = first
      · subst hfound
        simp [put, hthis]
      · have hdiffers : (other == first) = false := by simpa using hfound
        simp only [put, hthis, if_false, List.lookup_cons, hdiffers]
        exact ih

/-- A new name comes last; the names stay as they are otherwise. -/
theorem names_put (name : String) (value : α) (entries : List (String × α)) :
    names (put name value entries) =
      if name ∈ names entries then names entries else names entries ++ [name] := by
  induction entries with
  | nil => simp [put, names]
  | cons entry rest ih =>
    obtain ⟨first, current⟩ := entry
    by_cases hthis : first = name
    · simp [put, names, hthis]
    · have hlater : name ≠ first := fun hsame => hthis hsame.symm
      simp only [names] at ih
      by_cases hknown : name ∈ rest.map (·.1)
      · simp only [hknown, if_true] at ih
        simp [put, names, hthis, ih, hknown]
      · simp only [hknown, if_false] at ih
        simp [put, names, hthis, ih, hknown, hlater]

/-- A value under a new name is added at the end. -/
theorem put_of_not_mem {name : String} {value : α} {entries : List (String × α)}
    (hnew : name ∉ names entries) : put name value entries = entries ++ [(name, value)] := by
  induction entries with
  | nil => rfl
  | cons entry rest ih =>
    obtain ⟨first, current⟩ := entry
    have hlater : first ≠ name := fun hsame => hnew (by simp [names, hsame])
    have hfurther : name ∉ names rest := fun hmem => hnew (List.mem_cons_of_mem _ hmem)
    rw [put, if_neg hlater, ih hfurther, List.cons_append]

/-- After `put` a name has its new value or one that was there before. -/
theorem mem_put {name : String} {value : α} {entries : List (String × α)} {entry : String × α}
    (hmem : entry ∈ put name value entries) : entry = (name, value) ∨ entry ∈ entries := by
  induction entries with
  | nil => exact .inl (List.mem_singleton.mp hmem)
  | cons first rest ih =>
    obtain ⟨other, current⟩ := first
    rw [put] at hmem
    split at hmem
    · rcases List.mem_cons.mp hmem with hthis | hlater
      · exact .inl hthis
      · exact .inr (List.mem_cons_of_mem _ hlater)
    · rcases List.mem_cons.mp hmem with hthis | hlater
      · exact .inr (hthis ▸ List.mem_cons_self)
      · exact (ih hlater).imp_right (List.mem_cons_of_mem _)

/-- What is found under a name is listed under it. -/
theorem mem_names_of_lookup {name : String} {value : α} {entries : List (String × α)}
    (hfound : entries.lookup name = some value) : name ∈ names entries := by
  induction entries with
  | nil => simp at hfound
  | cons entry rest ih =>
    obtain ⟨first, current⟩ := entry
    by_cases hsame : name = first
    · simp [names, hsame]
    · have hdiffers : (name == first) = false := by simpa using hsame
      rw [List.lookup_cons, hdiffers] at hfound
      exact List.mem_cons_of_mem _ (ih hfound)

/-- Under a name that is not listed nothing is found. -/
theorem not_mem_names_of_lookup {name : String} {entries : List (String × α)}
    (hmissing : entries.lookup name = none) : name ∉ names entries := by
  intro hmem
  obtain ⟨entry, hlisted, rfl⟩ := List.mem_map.mp hmem
  simpa using List.lookup_eq_none_iff.mp hmissing entry hlisted

/-- What is listed is found under its name, if no name is listed twice. -/
theorem lookup_of_mem {name : String} {value : α} {entries : List (String × α)}
    (honce : (names entries).Nodup) (hmem : (name, value) ∈ entries) :
    entries.lookup name = some value := by
  induction entries with
  | nil => cases hmem
  | cons entry rest ih =>
    obtain ⟨hnew, hdistinct⟩ := List.nodup_cons.mp honce
    rcases List.mem_cons.mp hmem with hthis | hlater
    · rw [← hthis, List.lookup_cons_self]
    · have hdiffers : name ≠ entry.1 := by
        rintro rfl
        exact hnew (List.mem_map.mpr ⟨_, hlater, rfl⟩)
      rw [List.lookup_cons, beq_false_of_ne hdiffers]
      exact ih hdistinct hlater

end Lowering.Keyed
