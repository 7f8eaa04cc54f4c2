/-!
# Tables from names to values

A table is a list of entries without two entries of one name, in the order in which the
names were first put. Scopes, call frames, fields of instances and methods of classes
are tables. `get?` reads and `put` writes, whether or not the name is there.
-/

namespace Treewalk

/-- Entries by name. -/
abbrev Table (α : Type) := List (String × α)

namespace Table

variable {α : Type}

/-- The value under a name. -/
def get? (name : String) : Table α → Option α
  | [] => none
  | (key, value) :: entries => if key = name then some value else get? name entries

/-- Whether the name has a value. -/
def has (name : String) (table : Table α) : Bool :=
  (get? name table).isSome

/-- Puts a value under a name, in place of the value that was there. -/
def put (name : String) (value : α) : Table α → Table α
  | [] => [(name, value)]
  | (key, old) :: entries =>
    if key = name then (key, value) :: entries else (key, old) :: put name value entries

/-- Puts several values, from first to last. -/
def putAll (table : Table α) (entries : List (String × α)) : Table α :=
  entries.foldl (fun table entry => put entry.1 entry.2 table) table

/-- The names in order. -/
def names (table : Table α) : List String :=
  table.map (·.1)

/-! ## Reading after writing -/

@[simp] theorem get?_put_self (name : String) (value : α) (table : Table α) :
    get? name (put name value table) = some value := by
  induction table with
  | nil => simp [put, get?]
  | cons entry entries ih =>
    obtain ⟨key, old⟩ := entry
    by_cases h : key = name <;> simp [put, get?, h, ih]

@[simp] theorem get?_put_of_ne {name other : String} (h : other ≠ name) (value : α)
    (table : Table α) : get? other (put name value table) = get? other table := by
  induction table with
  | nil => simp [put, get?, h.symm]
  | cons entry entries ih =>
    obtain ⟨key, old⟩ := entry
    by_cases hkey : key = name
    · subst hkey
      simp [put, get?, h.symm]
    · by_cases hother : key = other
      · subst hother
        simp [put, get?, hkey]
      · simp [put, get?, hkey, hother, ih]

/-! ## Entries -/

theorem mem_of_get? {name : String} {value : α} {table : Table α}
    (h : table.get? name = some value) : (name, value) ∈ table := by
  induction table with
  | nil => cases h
  | cons entry rest ih =>
    obtain ⟨key, found⟩ := entry
    rw [get?] at h
    by_cases hkey : key = name
    · rw [if_pos hkey] at h
      rw [hkey, Option.some.inj h]
      exact List.mem_cons_self
    · rw [if_neg hkey] at h
      exact List.mem_cons_of_mem _ (ih h)

theorem mem_of_mem_put {name : String} {value : α} {table : Table α}
    {entry : String × α} (h : entry ∈ table.put name value) :
    entry ∈ table ∨ entry = (name, value) := by
  induction table with
  | nil => exact .inr (List.mem_singleton.1 h)
  | cons first rest ih =>
    obtain ⟨key, found⟩ := first
    rw [put] at h
    by_cases hkey : key = name
    · rw [if_pos hkey] at h
      rcases List.mem_cons.1 h with rfl | hrest
      · exact .inr (by rw [hkey])
      · exact .inl (List.mem_cons_of_mem _ hrest)
    · rw [if_neg hkey] at h
      rcases List.mem_cons.1 h with rfl | hrest
      · exact .inl List.mem_cons_self
      · exact (ih hrest).imp_left (List.mem_cons_of_mem _)

/-- Replacing a value keeps the names and their order. -/
theorem names_put_of_get? {name : String} (value : α) {table : Table α}
    (h : (table.get? name).isSome = true) :
    names (put name value table) = names table := by
  induction table with
  | nil => cases h
  | cons entry rest ih =>
    obtain ⟨key, old⟩ := entry
    by_cases hkey : key = name
    · simp [put, names, hkey]
    · have hrest : (get? name rest).isSome = true := by
        simpa [get?, hkey] using h
      have hnames := ih hrest
      simp only [names] at hnames
      simp [put, names, hkey, hnames]

end Table

end Treewalk
