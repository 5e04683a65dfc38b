namespace TensorTyping

/-- A table of named values, in the order in which names were first entered. -/
structure Table (α : Type) where
  entries : List (String × α)

namespace Table

variable {α : Type}

/-- No names. -/
def empty : Table α := ⟨[]⟩

/-- The value of the first entry of a name. -/
def get? (name : String) : List (String × α) → Option α
  | [] => none
  | e :: rest => if e.1 = name then some e.2 else get? name rest

/-- The value of a name. -/
def find? (t : Table α) (name : String) : Option α := get? name t.entries

/-- Replaces the value of a name, or adds both at the end. -/
def put (name : String) (value : α) : List (String × α) → List (String × α)
  | [] => [(name, value)]
  | e :: rest => if e.1 = name then (name, value) :: rest else e :: put name value rest

/-- Gives a name a value. A name that has one keeps its place. -/
def insert (t : Table α) (name : String) (value : α) : Table α := ⟨put name value t.entries⟩

/-- The names in order of entry. -/
def names (t : Table α) : List String := t.entries.map (·.1)

/-- The names in increasing order. -/
def sortedNames (t : Table α) : List String := t.names.mergeSort fun a b => (compare a b).isLE

theorem get?_put (name other : String) (value : α) (entries : List (String × α)) :
    get? other (put name value entries) =
      if other = name then some value else get? other entries := by
  induction entries with
  | nil => simp [put, get?, eq_comm]
  | cons e rest ih =>
    by_cases hname : e.1 = name
    · by_cases hother : other = name
      · simp [put, get?, hname, hother]
      · simp [put, get?, hname, hother, Ne.symm hother]
    · by_cases hother : e.1 = other
      · have : other ≠ name := hother ▸ hname
        simp [put, get?, hother, this]
      · simp [put, get?, hname, hother, ih]

/-- A name has the value it was given last. -/
theorem find?_insert (t : Table α) (name other : String) (value : α) :
    (t.insert name value).find? other = if other = name then some value else t.find? other :=
  get?_put name other value t.entries

end Table

end TensorTyping
