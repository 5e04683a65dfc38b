import TensorTyping.Word

namespace TensorTyping

/-- A JSON value. Of a number that is written with a fraction or an exponent only the spelling is
    kept, since no type has such a number in its form. -/
inductive Json where
  | null
  | bool (b : Bool)
  | int (n : Int)
  | real (spelling : String)
  | string (s : String)
  | array (items : List Json)
  | object (fields : List (String × Json))

namespace Json

instance : Inhabited Json := ⟨null⟩

/-- A natural number. -/
def nat (n : Nat) : Json := int n

/-- An object whose only key names a form. -/
def form (name : String) (contents : Json) : Json := object [(name, contents)]

/-- The value of an optional field; `null` if it is absent. -/
def optional {α : Type} (f : α → Json) (x : Option α) : Json := x.elim null f

/-- A value that is an integer. -/
def int? : Json → Option Int
  | int n => some n
  | _ => none

/-- A value that is a truth value. -/
def bool? : Json → Option Bool
  | bool b => some b
  | _ => none

/-- A value that is a text. -/
def string? : Json → Option String
  | string s => some s
  | _ => none

/-- A value that is an array of things of one sort. -/
def list? {α : Type} (f : Json → Option α) : Json → Option (List α)
  | array items => items.mapM f
  | _ => none

/-- A value that is a signed word. -/
def word? (j : Json) : Option Word := j.int?.bind Word.ofInt?

/-- A value that is a natural number below a bound. -/
def natBelow? (bound : Nat) (j : Json) : Option Nat := do
  let n ← j.int?
  if 0 ≤ n ∧ n < bound then some n.toNat else none

/-- A value that is an unsigned 8-bit number. -/
def uint8? (j : Json) : Option UInt8 := (j.natBelow? 256).map UInt8.ofNat

/-- A value that is an unsigned 16-bit number. -/
def uint16? (j : Json) : Option UInt16 := (j.natBelow? 65536).map UInt16.ofNat

/-- A value that is an unsigned 32-bit number. -/
def uint32? (j : Json) : Option UInt32 := (j.natBelow? 4294967296).map UInt32.ofNat

/-- A value that is an unsigned 64-bit number. -/
def uint64? (j : Json) : Option UInt64 := (j.natBelow? 18446744073709551616).map UInt64.ofNat

/-- The fields of a record by name, in the order of the names; a field can be absent. An array must
    give the first `least` fields. -/
def record? (names : List String) (least : Nat) : Json → Option (List (Option Json))
  | object fields => some (names.map fun name => fields.lookup name)
  | array items =>
    if least ≤ items.length ∧ items.length ≤ names.length then
      some (items.map some ++ List.replicate (names.length - items.length) none)
    else none
  | _ => none

/-- The fields of a record in which none is absent. -/
def fields? (names : List String) (j : Json) : Option (List Json) :=
  (j.record? names names.length).bind fun fields => fields.mapM id

/-- The name of a form and its contents, which can be absent. -/
def form? : Json → Option (String × Option Json)
  | string name => some (name, none)
  | object [(name, contents)] => some (name, some contents)
  | _ => none

/-- A value that is one of several names. -/
def name? {α : Type} (names : List (String × α)) (j : Json) : Option α := do
  match ← j.form? with
  | (name, none) | (name, some null) => names.lookup name
  | _ => none

private theorem sizeOf_lookup_lt {fields : List (String × Json)} {name : String} {x : Json}
    (h : fields.lookup name = some x) : sizeOf x < sizeOf fields := by
  induction fields with
  | nil => simp at h
  | cons e rest ih =>
    obtain ⟨key, value⟩ := e
    rw [List.lookup_cons] at h
    split at h
    · cases h
      simp only [List.cons.sizeOf_spec, Prod.mk.sizeOf_spec]
      omega
    · have := ih h
      simp only [List.cons.sizeOf_spec, Prod.mk.sizeOf_spec]
      omega

private theorem some_mem_of_mapM_id {α : Type} {xs : List (Option α)} {ys : List α} {y : α}
    (h : xs.mapM id = some ys) (hy : y ∈ ys) : some y ∈ xs := by
  induction xs generalizing ys with
  | nil => simp_all
  | cons x xs ih =>
    simp only [List.mapM_cons, id_eq, Option.bind_eq_bind, Option.bind_eq_some_iff, Option.pure_def,
      Option.some.injEq] at h
    obtain ⟨z, rfl, zs, hzs, rfl⟩ := h
    rcases List.mem_cons.mp hy with rfl | hmem
    · exact List.mem_cons_self
    · exact List.mem_cons_of_mem _ (ih hzs hmem)

/-- The fields of a record are smaller than the record. -/
theorem sizeOf_lt_of_mem_fields? {names : List String} {j x : Json} {fields : List Json}
    (h : j.fields? names = some fields) (hx : x ∈ fields) : sizeOf x < sizeOf j := by
  obtain ⟨found, hfound, hfields⟩ := Option.bind_eq_some_iff.mp h
  have hmem := some_mem_of_mapM_id hfields hx
  unfold record? at hfound
  split at hfound
  · cases hfound
    obtain ⟨name, -, hname⟩ := List.mem_map.mp hmem
    have := sizeOf_lookup_lt hname
    simp only [object.sizeOf_spec]
    omega
  · rename_i items
    split at hfound
    · cases hfound
      have : x ∈ items := by simpa [List.mem_replicate] using hmem
      have := List.sizeOf_lt_of_mem this
      simp only [array.sizeOf_spec]
      omega
    · cases hfound
  · cases hfound

end Json

end TensorTyping
